import Packrat.Proofs.Engine.Boundaries
import Packrat.Proofs.Tracing.CallCounts

/-!
# What a cache is asked for twice

While the parser behind a cache is being run the cache has no entry yet, and the run may come to ask
the same cache at the same position again. Then the goal of the run comes back to itself, so it
yields nothing, and no cache stores an answer to it. So where an answer is stored at all, it is
stored by the call that found none.

* **`Legend.Answers`** — the goal that an entry of a cache answers.
* **`Account`** — what is known of the marks of a run: they account for the changes to caches and
  counters; what they store answers goals that the run has come to ask for; and where a cached
  parser has failed, the cache has no entry.
* **`runs_account`** — every run has such an account, by induction on the grammar and on the depth,
  side by side with the course that it follows.
-/

namespace Packrat

open Relation

/-! ## Answers

The legend of a workspace says which blueprint each cache is asked for. With the rest of the text at
the position that is a goal, and an entry is the outcome of that goal. -/

namespace Legend

variable {L L' : Legend} {s : Source} {k : CacheId} {p : Position} {m m' : Goal}

/-- An entry of the cache at the position answers the goal. -/
def Answers (L : Legend) (s : Source) (k : CacheId) (p : Position) (m : Goal) : Prop :=
  ∃ scope b Γ cs, L.parser k = some (scope, b) ∧ L.Scoped scope Γ ∧ cs <:+ s.text
    ∧ p = (s.before cs).position ∧ m = .parse Γ b cs

/-- An answer stays one as more becomes known. -/
theorem Answers.mono (hle : L.Le L') (h : L.Answers s k p m) : L'.Answers s k p m := by
  obtain ⟨scope, b, Γ, cs, hk, hΓ, hcs, hp, hm⟩ := h
  exact ⟨scope, b, Γ, cs, hle.parser hk, hΓ.mono hle, hcs, hp, hm⟩

/-- An entry answers one goal only. -/
theorem Answers.unique (h : L.Answers s k p m) (h' : L.Answers s k p m') : m = m' := by
  obtain ⟨scope, b, Γ, cs, hk, hΓ, hcs, rfl, rfl⟩ := h
  obtain ⟨scope', b', Γ', cs', hk', hΓ', hcs', hp, rfl⟩ := h'
  cases Option.some.inj (hk.symm.trans hk')
  obtain rfl : cs = cs' := (Source.position_before_inj hcs hcs').1 hp
  rw [hΓ.unique hΓ']

end Legend

/-! ## Accounts

An account is put together along the run: from what happens before the first mark, from stretch to
stretch, and with a call and a return around it. -/

/-- The goal is the run's own, asked of one of the caches around its parser, or one that the run
has come to ask for. -/
def Goal.ReachedBy (n : Goal) (ks : List CacheId) (k : CacheId) (m : Goal) : Prop :=
  (k ∈ ks ∧ m = n) ∨ TransGen Goal.Asks n m

/-- The marks of a run of the goal account for what it has done. -/
structure Account (L : Legend) (s : Source) (n : Goal) (ks : List CacheId) (w : Workspace)
    (x : Outcome × Workspace) (ms : List Mark) : Prop where
  records : w.Records ms x.2
  reached : ∀ {k p}, p ∈ stores k ms → ∃ m, L.Answers s k p m ∧ n.ReachedBy ks k m
  barren : ∀ {k g c f}, .returned (.memo k g) c (.failed f) ∈ ms →
    x.2.cachedAt? k c.position = none

section

variable {L L' : Legend} {s : Source} {n m : Goal} {ks ks' : List CacheId} {w w' : Workspace}
  {x : Outcome × Workspace} {o : Outcome} {ms ms' : List Mark} {g : Grammar} {c : Cursor}

/-- Marks that store and call the same record the same. -/
theorem Workspace.Records.congr {w'' : Workspace} (h : w.Records ms w'')
    (hstores : ∀ k, stores k ms' = stores k ms) (hcalls : ∀ name, calls name ms' = calls name ms) :
    w.Records ms' w'' where
  misses k := by
    rw [hstores]
    exact h.misses k
  once k := by
    rw [hstores]
    exact h.once k
  uncached hp := by
    rw [hstores] at hp
    exact h.uncached hp
  cached hp := by
    rw [hstores] at hp
    exact h.cached hp
  kept hp := by
    rw [hstores] at hp
    exact h.kept hp
  positions k := by
    rw [hstores]
    exact h.positions k
  tally name := by
    rw [hcalls]
    exact h.tally name
  opened := h.opened

namespace Account

theorem quiet (h : w.Records [] w') : Account L s n ks w (o, w') [] where
  records := h
  reached hp := nomatch hp
  barren hm := nomatch hm

theorem mono (hle : L.Le L') (h : Account L s n ks w x ms) : Account L' s n ks w x ms where
  records := h.records
  reached hp := by
    obtain ⟨m, hm, hreached⟩ := h.reached hp
    exact ⟨m, hm.mono hle, hreached⟩
  barren := h.barren

/-- What a goal reaches is reached from every goal that asks for it. -/
theorem asks (hask : n.Asks m) (h : Account L s m ks' w x ms) : Account L s n ks w x ms where
  records := h.records
  reached hp := by
    obtain ⟨l, hl, ⟨_, rfl⟩ | hreach⟩ := h.reached hp
    · exact ⟨l, hl, Or.inr (.single hask)⟩
    · exact ⟨l, hl, Or.inr (.head hask hreach)⟩
  barren := h.barren

/-- A stretch without failures, and another one. -/
theorem append (h : Account L s n ks w (o, w') ms) (hms : ∀ m ∈ ms, m.failure? = none)
    (h' : Account L s n ks w' x ms') : Account L s n ks w x (ms ++ ms') where
  records := h.records.trans h'.records
  reached {k p} hp := by
    rw [stores_append, List.mem_append] at hp
    rcases hp with hp | hp
    · exact h.reached hp
    · exact h'.reached hp
  barren hm := by
    rcases List.mem_append.1 hm with hm | hm
    · exact nomatch hms _ hm
    · exact h'.barren hm

/-- What happens after the last mark, and the outcome then. -/
theorem after (h : Account L s n ks w x ms) (h' : x.2.Records [] w') :
    Account L s n ks w (o, w') ms where
  records := h.records.trans_quiet h'
  reached := h.reached
  barren hm := by
    rw [h'.kept List.not_mem_nil]
    exact h.barren hm

/-- What happens before the first mark. -/
theorem before (h' : w.Records [] w') (h : Account L s n ks w' x ms) :
    Account L s n ks w x ms where
  records := h'.trans h.records
  reached := h.reached
  barren := h.barren

/-- The return of a cached parser that has failed adds that the cache has no entry. -/
theorem around (h : Account L s n ks w x ms)
    (hg : ∀ k q f, g = .memo k q → x.1 = .failed f → x.2.cachedAt? k c.position = none) :
    Account L s n ks w x (.called g c :: (ms ++ [.returned g c x.1])) where
  records := h.records.congr (fun k => stores_around k ms g c x.1)
    (fun name => calls_around name ms g c x.1)
  reached {k p} hp := by
    rw [stores_around] at hp
    exact h.reached hp
  barren {k q d f} hm := by
    rcases List.mem_cons.1 hm with hm | hm
    · cases hm
    rcases List.mem_append.1 hm with hm | hm
    · exact h.barren hm
    · obtain ⟨hmemo, rfl, hf⟩ : .memo k q = g ∧ d = c ∧ .failed f = x.1 := by
        simpa using hm
      exact hg k q f hmemo.symm hf.symm

end Account

/-- The run passes, and its marks account for it. -/
def Accounts (L : Legend) (s : Source) (n : Goal) (ks : List CacheId) (w : Workspace)
    (y : (Outcome × Workspace) × List Mark) : Prop :=
  ∃ L', L.Passes w L' y.1.2 ∧ Account L' s n ks w y.1 y.2

/-- A run without marks has an account if it changes nothing that marks account for. -/
theorem accounts_quiet (hw : L.Coherent w) (haside : w.Aside w') (h : w.Records [] w') :
    Accounts L s n ks w ((o, w'), []) :=
  ⟨L, hw.passes_aside haside, .quiet h⟩

theorem accounts_done (hw : L.Coherent w) (o : Outcome) :
    Accounts L s n ks w (Traced.done o w) :=
  ⟨L, .refl hw, .quiet (.refl w)⟩

/-- A run of what the goal asks for is accounted for as part of a run of the goal. -/
theorem Accounts.asks {y : (Outcome × Workspace) × List Mark} (hask : n.Asks m)
    (h : Accounts L s m ks' w y) : Accounts L s n ks w y := by
  obtain ⟨L', hpass, haccount⟩ := h
  exact ⟨L', hpass, haccount.asks hask⟩

/-- A call and a return around a run leave its account as it is, unless the parser is a cached one.
-/
theorem Accounts.around {r : Traced} (h : Accounts L s n ks w (r w)) (hg : ∀ k q, g ≠ .memo k q) :
    Accounts L s n ks w (Traced.around g c r w) := by
  obtain ⟨L', hpass, haccount⟩ := h
  exact ⟨L', hpass, haccount.around fun k q _ hmemo => absurd hmemo (hg k q)⟩

/-- Going on after an answer. -/
theorem Accounts.append {y : (Outcome × Workspace) × List Mark}
    (h : Accounts L s n ks w ((o, w'), ms)) (horderly : o.Orderly ms) (ho : o.IsAnswer)
    (hnext : ∀ L', L.Passes w L' w' → Accounts L' s n ks w' y) :
    Accounts L s n ks w (y.1, ms ++ y.2) := by
  obtain ⟨L', hpass, haccount⟩ := h
  obtain ⟨L'', hpass', haccount'⟩ := hnext L' hpass
  have hclean := horderly.passage.clean ho.ne_failed
  exact ⟨L'', hpass.trans hpass', (haccount.mono hpass'.toLe).append hclean haccount'⟩

/-- An outcome may be exchanged for another one. -/
theorem Accounts.instead {o' : Outcome} (h : Accounts L s n ks w ((o, w'), ms)) :
    Accounts L s n ks w ((o', w'), ms) := by
  obtain ⟨L', hpass, haccount⟩ := h
  exact ⟨L', hpass, haccount.after (.refl w')⟩

theorem Accounts.andThen {r : Traced} {next : Value → Cursor → Traced} (hr : r.Orderly)
    (h : Accounts L s n ks w (r w))
    (hnext : ∀ L' w' v d ms, L.Passes w L' w' → r w = ((.matched v d, w'), ms) →
      Accounts L' s n ks w' (next v d w')) : Accounts L s n ks w (r.andThen next w) := by
  have horderly := hr w
  unfold Traced.andThen
  generalize r w = y at h horderly hnext ⊢
  obtain ⟨⟨o, w'⟩, ms⟩ := y
  cases o with
  | matched v d =>
    exact h.append horderly trivial fun L' hpass => hnext L' w' v d ms hpass rfl
  | noMatch => exact h
  | failed f => exact h
  | fault f => exact h

theorem Accounts.orElse {r next : Traced} (hr : r.Orderly) (h : Accounts L s n ks w (r w))
    (hnext : ∀ L' w' ms, L.Passes w L' w' → r w = ((.noMatch, w'), ms) →
      Accounts L' s n ks w' (next w')) : Accounts L s n ks w (r.orElse next w) := by
  have horderly := hr w
  unfold Traced.orElse
  generalize r w = y at h horderly hnext ⊢
  obtain ⟨⟨o, w'⟩, ms⟩ := y
  cases o with
  | noMatch => exact h.append horderly trivial fun L' hpass => hnext L' w' ms hpass rfl
  | matched v d => exact h
  | failed f => exact h
  | fault f => exact h

end

/-! ## Runs

The account of a run is found side by side with its course, since the next parser is ready only
where the course says so. -/

section

variable {depth : Nat} {L : Legend} {s : Source} {w : Workspace} {scope : Scope} {Γ : Context}
  {g : Grammar} {b : Blueprint} {cs : List Char}

/-- A traced run follows the course of its goal, as the run that it traces does. -/
theorem traced_performs (hreads : L.Reads scope g b)
    (h : Ready ⟨true, depth⟩ L s scope Γ (.parse Γ b cs) w) :
    Performs ⟨true, depth⟩ L s w (Goal.parse Γ b cs).course
      (g.traced (Rule.traced depth) (s.before cs) w).1 := by
  rw [Grammar.traced_follows (Rule.traced_follows depth) g (s.before cs) w]
  exact run_performs s true depth hreads h

theorem traced_is_orderly (depth : Nat) (g : Grammar) (c : Cursor) :
    (g.traced (Rule.traced depth) c).Orderly :=
  Grammar.traced_orderly (Rule.traced_orderly depth) g c

theorem traced_upholds (depth : Nat) (g : Grammar) (c : Cursor) (hw : w.Proper) :
    w.Upholds (g.traced (Rule.traced depth) c w).1.2 :=
  (Grammar.traced_counts (@Rule.traced_counts "" 0 depth) g c w hw).upholds

/-- Every grammar that reads as a blueprint has an account of its runs. -/
def RunsAccount (depth : Nat) (s : Source) : Prop :=
  ∀ {L : Legend} {scope : Scope} {Γ : Context} {g : Grammar} {b : Blueprint} {cs : List Char}
    {w : Workspace}, L.Reads scope g b → Ready ⟨true, depth⟩ L s scope Γ (.parse Γ b cs) w →
    w.Proper → g.Proper w → Accounts L s (.parse Γ b cs) g.wrappers w
      (g.traced (Rule.traced depth) (s.before cs) w)

/-- Repeating a parser. Induction on the rounds; each one leaves off where the next one is ready. -/
theorem accounts_repeatFrom
    (hg : ∀ {L : Legend} {cs : List Char} {w : Workspace}, L.Reads scope g b →
      Ready ⟨true, depth⟩ L s scope Γ (.parse Γ b cs) w → w.Proper → g.Proper w →
      Accounts L s (.parse Γ b cs) g.wrappers w (g.traced (Rule.traced depth) (s.before cs) w))
    (hreads : L.Reads scope g b) {values : List Value}
    (h : Ready ⟨true, depth⟩ L s scope Γ (.again Γ b values cs) w) (hw : w.Proper)
    (hproper : g.Proper w) (rounds : Nat) :
    Accounts L s (.again Γ b values cs) [] w
      (Traced.repeatFrom (g.traced (Rule.traced depth)) rounds values (s.before cs) w) := by
  induction rounds generalizing L w values cs with
  | zero => exact accounts_done h.coherent _
  | succ rounds ih =>
    have hround : (Goal.again Γ b values cs).Asks (.parse Γ b cs) := .now
    have hperforms := traced_performs hreads (h.asks hround)
    have horderly := traced_is_orderly depth g (s.before cs) w
    have hupholds := traced_upholds depth g (s.before cs) hw
    have hfirst : Accounts L s (.again Γ b values cs) [] w
        (g.traced (Rule.traced depth) (s.before cs) w) :=
      (hg hreads (h.asks hround) hw hproper).asks hround
    simp only [Traced.repeatFrom]
    generalize g.traced (Rule.traced depth) (s.before cs) w = y
      at hperforms horderly hupholds hfirst
    obtain ⟨⟨o, w'⟩, ms⟩ := y
    cases o with
    | matched v next =>
      obtain ⟨_, rest, _, hv, rfl⟩ := hperforms.of_matched
      simp only
      split
      next => exact hfirst.instead
      next hmoved =>
        have hne : rest ≠ cs := fun hrest => hmoved (by rw [hrest])
        have hnext : (Goal.again Γ b values cs).Asks (.again Γ b (v :: values) rest) :=
          Goal.asks_again hv hne
        refine hfirst.append horderly trivial fun L' hpass => ?_
        exact (ih (hreads.mono hpass.toLe) ((h.passes hpass).asks hnext) hupholds.proper
          (hproper.mono hupholds.opened)).asks hnext
    | noMatch =>
      simp only
      split
      next => exact hfirst
      next => exact hfirst.instead
    | failed f => exact hfirst
    | fault f => exact hfirst

/-! ### Caches

A cached parser is the one place where something is stored. Its goal has no entry while it is run,
unless it comes back to itself, and then it comes to nothing. -/

variable {k : CacheId} {L' : Legend} {w' : Workspace} {ms : List Mark} {v : Verdict}

theorem Ready.answers (h : Ready ⟨true, depth⟩ L s scope Γ (.parse Γ b cs) w)
    (hk : L.parser k = some (scope, b)) (hle : L.Le L') :
    L'.Answers s k (s.before cs).position (.parse Γ b cs) :=
  ⟨scope, b, Γ, cs, hle.parser hk, h.context.mono hle, h.inside, rfl, rfl⟩

/-- **A goal that yields is not stored while it is run**: it would have to come back to itself. -/
theorem Account.not_stored {x : Outcome × Workspace}
    (h : Account L' s (.parse Γ b cs) g.wrappers w x ms)
    (hanswers : L'.Answers s k (s.before cs).position (.parse Γ b cs))
    (hk : k ∉ g.wrappers) (hv : (Goal.parse Γ b cs).Yields v) :
    (s.before cs).position ∉ stores k ms := by
  intro hp
  obtain ⟨m, hm, hreached⟩ := h.reached hp
  obtain rfl : m = .parse Γ b cs := hm.unique hanswers
  rcases hreached with ⟨hwrapper, _⟩ | hback
  · exact hk hwrapper
  · exact Goal.Loops.not_yields ⟨_, .refl, hback, rfl⟩ ⟨v, hv⟩

/-- A goal that fails has no entry, since it yields no answer. -/
theorem Performs.no_entry {f : Failure}
    (h : Performs ⟨true, depth⟩ L s w (Goal.parse Γ b cs).course (.failed f, w'))
    {r : Remembered} (hv : (Goal.parse Γ b cs).Yields v) : v.remembered s ≠ some r := by
  obtain ⟨_, _, ⟨u, hu, hout, _⟩ | ⟨hm, hloops, _⟩⟩ := h
  · rw [Goal.yields_unique hv hu]
    cases u with
    | failed message rest => exact nofun
    | matched value rest => cases hout
    | noMatch => cases hout
    | stalled rest => cases hout
  · exact absurd ⟨v, hv⟩ (hloops.of_asks hm).not_yields

/-- What is reached from a cached parser is reached from the cache. -/
theorem Goal.ReachedBy.memo {n m : Goal} {ks : List CacheId} {i : CacheId}
    (h : n.ReachedBy ks i m) (k : CacheId) : n.ReachedBy (k :: ks) i m := by
  rcases h with ⟨hi, hm⟩ | hreach
  · exact Or.inl ⟨List.mem_cons_of_mem k hi, hm⟩
  · exact Or.inr hreach

/-- An answer is found, and stored where there still is none. -/
theorem accounts_stored {o : Outcome} {r : Remembered}
    (h : Ready ⟨true, depth⟩ L s scope Γ (.parse Γ b cs) w)
    (hk : L.parser k = some (scope, b)) (hproper : k ∉ g.wrappers)
    (hnone : w.cachedAt? k (s.before cs).position = none)
    (hinner : Accounts L s (.parse Γ b cs) g.wrappers w ((o, w'), ms)) (horderly : o.Orderly ms)
    (ho : o.IsAnswer) (hv : (Goal.parse Γ b cs).Yields v) (hr : v.remembered s = some r) :
    Accounts L s (.parse Γ b cs) (k :: g.wrappers) w
      ((o, (w'.log (.cacheMiss k (s.before cs).position)).remember k (s.before cs).position r),
        .evaluated k (s.before cs).position :: (ms ++ [.stored k (s.before cs).position])) := by
  obtain ⟨L', hpass, haccount⟩ := hinner
  have hanswers := h.answers hk hpass.toLe
  have hfree : w'.cachedAt? k (s.before cs).position = none := by
    rw [haccount.records.kept (haccount.not_stored hanswers hproper hv), hnone]
  have hremember := @Workspace.Records.stored w' k (s.before cs).position r
    (hpass.coherent.cache (hpass.parser hk)) hfree
  refine ⟨L', hpass.remember h hk hv hr, ?_, ?_, ?_⟩
  · exact (haccount.records.trans hremember).congr (fun i => stores_evaluated i _ k _)
      fun name => calls_evaluated name _ k _
  · intro i p hp
    rw [stores_evaluated, stores_append, List.mem_append] at hp
    rcases hp with hp | hp
    · obtain ⟨m, hm, hreached⟩ := haccount.reached hp
      exact ⟨m, hm, hreached.memo k⟩
    · rw [stores_stored] at hp
      split at hp
      next hi =>
        subst hi
        rw [List.mem_singleton.1 hp]
        exact ⟨_, hanswers, Or.inl ⟨List.mem_cons_self, rfl⟩⟩
      next => cases hp
  · intro i q d f hm
    -- there is an answer, so no failure has been returned on the way to it
    have hclean := (horderly.stored ho k (s.before cs).position).passage.clean ho.ne_failed
    exact nomatch hclean _ hm

/-- The parser behind the cache comes to no answer. -/
theorem accounts_unstored {o : Outcome} (k : CacheId)
    (hinner : Accounts L s (.parse Γ b cs) g.wrappers w ((o, w'), ms)) (p : Position) :
    Accounts L s (.parse Γ b cs) (k :: g.wrappers) w ((o, w'), .evaluated k p :: ms) := by
  obtain ⟨L', hpass, haccount⟩ := hinner
  refine ⟨L', hpass, ?_, ?_, ?_⟩
  · exact haccount.records.congr (fun i => stores_evaluated i ms k p)
      fun name => calls_evaluated name ms k p
  · intro i q hq
    rw [stores_evaluated] at hq
    obtain ⟨m, hm, hreached⟩ := haccount.reached hq
    exact ⟨m, hm, hreached.memo k⟩
  · intro i q d f hm
    rcases List.mem_cons.1 hm with hm | hm
    · cases hm
    · exact haccount.barren hm

theorem accounts_viaCache (hk : L.parser k = some (scope, b)) (hg : L.Reads scope g b)
    (h : Ready ⟨true, depth⟩ L s scope Γ (.parse Γ b cs) w) (hproper : k ∉ g.wrappers)
    (hinner : Accounts L s (.parse Γ b cs) g.wrappers w
      (g.traced (Rule.traced depth) (s.before cs) w)) :
    Accounts L s (.parse Γ b cs) (k :: g.wrappers) w
      (Traced.viaCache k (s.before cs) (g.traced (Rule.traced depth) (s.before cs)) w) := by
  have hperforms := traced_performs hg h
  have horderly := traced_is_orderly depth g (s.before cs) w
  unfold Traced.viaCache
  cases hcached : w.cachedAt? k (s.before cs).position with
  | some remembered =>
    -- an answer from the cache leaves no mark
    have haside := @Workspace.aside_log w (.cacheHit k (s.before cs).position) rfl
    cases remembered with
    | some answer => exact accounts_quiet h.coherent haside (.log fun _ => rfl)
    | none => exact accounts_quiet h.coherent haside (.log fun _ => rfl)
  | none =>
    simp only
    generalize g.traced (Rule.traced depth) (s.before cs) w = y at hperforms horderly hinner
    obtain ⟨⟨o, w'⟩, ms⟩ := y
    cases o with
    | matched value next =>
      obtain ⟨_, rest, _, hv, rfl⟩ := hperforms.of_matched
      exact accounts_stored h hk hproper hcached hinner horderly trivial hv rfl
    | noMatch =>
      obtain ⟨_, _, hv⟩ := hperforms.of_noMatch
      exact accounts_stored h hk hproper hcached hinner horderly trivial hv rfl
    | failed f => exact accounts_unstored k hinner _
    | fault f => exact accounts_unstored k hinner _

/-- Where a cached parser fails, the cache has no entry: an entry would be an answer to the goal. -/
theorem accounts_memo (hk : L.parser k = some (scope, b)) (hg : L.Reads scope g b)
    (h : Ready ⟨true, depth⟩ L s scope Γ (.parse Γ b cs) w) (hproper : k ∉ g.wrappers)
    (hinner : Accounts L s (.parse Γ b cs) g.wrappers w
      (g.traced (Rule.traced depth) (s.before cs) w)) :
    Accounts L s (.parse Γ b cs) (k :: g.wrappers) w
      ((Grammar.memo k g).traced (Rule.traced depth) (s.before cs) w) := by
  obtain ⟨L', hpass, haccount⟩ := accounts_viaCache hk hg h hproper hinner
  have hperforms : Performs ⟨true, depth⟩ L s w (Goal.parse Γ b cs).course
      (Traced.viaCache k (s.before cs) (g.traced (Rule.traced depth) (s.before cs)) w).1 :=
    traced_performs (.memo hk hg) h
  refine ⟨L', hpass, haccount.around fun i q f hmemo hf => ?_⟩
  cases hmemo
  generalize Traced.viaCache k (s.before cs) _ w = y at hpass hperforms hf ⊢
  obtain ⟨⟨o, w'⟩, ms⟩ := y
  obtain rfl : o = .failed f := hf
  refine Option.eq_none_iff_forall_ne_some.2 fun r hr => ?_
  obtain ⟨v, hv, hremembered⟩ := hpass.coherent.entry_at (hpass.text h.known) h.inside
    (h.context.mono hpass.toLe) (hpass.parser hk) hr
  exact hperforms.no_entry hv hremembered

/-! ### Rules

A rule has no marks of its own besides its call and return, so what its definition accounts for is
what it accounts for. -/

/-- A rule that is entered runs its definition, one level deeper; where it refuses, nothing is
run. -/
theorem accounts_rule {hold : Hold} {id : RuleId} (hrun : RunsAccount depth s)
    (hreads : L.Reads scope (.rule hold id) b)
    (h : Ready ⟨true, depth + 1⟩ L s scope Γ (.parse Γ b cs) w) (hw : w.Proper) :
    Accounts L s (.parse Γ b cs) [] w (Rule.traced (depth + 1) hold id (s.before cs) w) := by
  obtain ⟨plan, outer, hid, houter, hsuffix, _, hask, hactive⟩ := h.rule_course hreads
  have hrefusal := h.coherent.refusal? hid hactive (s.before cs)
  rw [Rule.traced]
  by_cases hmarker : w.marker id = some (s.before cs).position
  · -- refused before anything is run: the report of it is all that happens
    rw [if_pos hmarker] at hrefusal
    simp only [hrefusal]
    refine ⟨L, ⟨.refl L w, ?_, ?_⟩, .quiet (.log fun _ => rfl)⟩
    · exact h.coherent.congr (fun _ r hr => ⟨r, hr, rfl, rfl⟩) rfl (Nat.le_refl _)
    · exact ⟨fun _ => rfl, rfl, rfl, Nat.le_refl _, Nat.le_refl _⟩
  · rw [if_neg hmarker] at hrefusal
    simp only [hrefusal]
    obtain ⟨r, hr, _⟩ := h.coherent.rule hid
    have henter : w.Upholds (w.enter id (s.before cs).position) := hw.upholds_mark rfl rfl
    obtain ⟨hquiet, hupholds, hhas⟩ := henter.proper.definition id
    obtain ⟨L₁, g, w₁, hdefinition, hpass, _, hg⟩ := h.definition hid cs
    rw [hdefinition] at hquiet hupholds hhas ⊢
    have hready := h.enter hid houter hsuffix hask (fun _ => hmarker) hpass
    have hproper : g.Proper w₁ := hupholds.proper.built (hhas g rfl)
    obtain ⟨L₂, hpass', haccount⟩ := hrun hg hready hupholds.proper hproper
    have hmark : w.Records [] (w.enter id (s.before cs).position) := .same rfl rfl rfl
    have hstart : w.Records [] w₁ := hmark.trans_quiet hquiet
    refine ⟨L₂, (hpass.trans hpass').leave hr, ?_⟩
    exact ((haccount.asks hask).before hstart).after (.same rfl rfl rfl)

/-! ### Grammars -/

/-- A grammar has an account of its runs if its rules do. Induction on the grammar. -/
theorem runsAccount_of_rules
    (hrule : ∀ {hold : Hold} {id : RuleId} {L : Legend} {scope : Scope} {Γ : Context}
      {b : Blueprint} {cs : List Char} {w : Workspace}, L.Reads scope (.rule hold id) b →
      Ready ⟨true, depth⟩ L s scope Γ (.parse Γ b cs) w → w.Proper →
      Accounts L s (.parse Γ b cs) [] w (Rule.traced depth hold id (s.before cs) w)) :
    RunsAccount depth s := by
  intro L scope Γ g b cs w hreads h hw hproper
  induction g generalizing L b cs w with
  | literal token => exact (accounts_done h.coherent _).around (by simp)
  | chars cls => exact (accounts_done h.coherent _).around (by simp)
  | accept value => exact (accounts_done h.coherent _).around (by simp)
  | map f g ih =>
    cases hreads with
    | map hg =>
      refine Accounts.around (.andThen (traced_is_orderly depth g _)
        ((ih hg (h.asks .now) hw hproper).asks .now) fun L' w' v d ms hpass _ => ?_) (by simp)
      exact accounts_done hpass.coherent _
  | tryMap f g ih =>
    cases hreads with
    | tryMap hg =>
      refine Accounts.around (.andThen (traced_is_orderly depth g _)
        ((ih hg (h.asks .now) hw hproper).asks .now) fun L' w' v d ms hpass _ => ?_) (by simp)
      cases f v with
      | ok u => exact accounts_done hpass.coherent _
      | error message => exact accounts_done hpass.coherent _
  | seq g g' ih ih' =>
    cases hreads with
    | @seq _ _ p p' hg hg' =>
      have hfirst := traced_performs hg (h.asks .now)
      have hupholds := traced_upholds depth g (s.before cs) hw
      refine Accounts.around (.andThen (traced_is_orderly depth g _)
        ((ih hg (h.asks .now) hw hproper.1).asks .now) fun L' w' u d ms hpass hrun => ?_)
        (by simp)
      rw [hrun] at hfirst hupholds
      obtain ⟨_, rest, _, hu, rfl⟩ := hfirst.of_matched
      -- the second part is asked for only now that the first one has yielded a match
      have hask : (Goal.parse Γ (.seq p p') cs).Asks (.parse Γ p' rest) := .later hu .now
      refine .andThen (traced_is_orderly depth g' _) ((ih' (hg'.mono hpass.toLe)
        ((h.passes hpass).asks hask) hupholds.proper (hproper.2.mono hupholds.opened)).asks hask)
        fun L'' w'' v e ms' hpass' _ => ?_
      exact accounts_done hpass'.coherent _
  | alt g g' ih ih' =>
    cases hreads with
    | @alt _ _ p p' hg hg' =>
      have hfirst := traced_performs hg (h.asks .now)
      have hupholds := traced_upholds depth g (s.before cs) hw
      refine Accounts.around (.orElse (traced_is_orderly depth g _)
        ((ih hg (h.asks .now) hw hproper.1).asks .now) fun L' w' ms hpass hrun => ?_)
        (by simp)
      rw [hrun] at hfirst hupholds
      obtain ⟨_, _, hno⟩ := hfirst.of_noMatch
      have hask : (Goal.parse Γ (.alt p p') cs).Asks (.parse Γ p' cs) := .later hno .now
      exact (ih' (hg'.mono hpass.toLe) ((h.passes hpass).asks hask) hupholds.proper
        (hproper.2.mono hupholds.opened)).asks hask
  | rep g ih =>
    cases hreads with
    | @rep _ p hg =>
      have hask : (Goal.parse Γ (.rep p) cs).Asks (.again Γ p [] cs) := .now
      have hrounds := accounts_repeatFrom ih hg (h.asks hask) hw hproper (cs.length + 1)
      exact (hrounds.asks hask).around (by simp)
  | required message g ih =>
    cases hreads with
    | required hg =>
      refine Accounts.around (.orElse (traced_is_orderly depth g _)
        ((ih hg (h.asks .now) hw hproper).asks .now) fun L' w' ms hpass _ => ?_) (by simp)
      exact accounts_quiet hpass.coherent
        (@Workspace.aside_log w' (.requirementFailed (s.before cs).offset message) rfl)
        (.log fun _ => rfl)
  | memo k g ih =>
    cases hreads with
    | memo hk hg => exact accounts_memo hk hg h hproper.1 (ih hg h hw hproper.2)
  | count name g ih =>
    cases hreads with
    | count hg =>
      have haside := w.aside_countCall name
      have hcount := hw.upholds_countCall name
      have hpass := h.coherent.passes_aside haside
      have hcall : Account L s (.parse Γ b cs) g.wrappers w (.noMatch, w.countCall name)
          [.counted name] := ⟨.countCall hproper.1, fun hp => absurd hp List.not_mem_nil, by simp⟩
      obtain ⟨L', hpass', haccount⟩ := ih hg (h.passes hpass) hcount.proper
        (hproper.2.mono hcount.opened)
      have hboth := (hcall.mono hpass'.toLe).append (by simp [Mark.failure?]) haccount
      refine ⟨L', hpass.trans hpass', ?_⟩
      exact hboth.around (by simp)
  | rule hold id => exact (hrule hreads h hw).around (by simp)

/-- **Every run has an account.** Induction on the depth. -/
theorem runs_account (s : Source) (depth : Nat) : RunsAccount depth s := by
  induction depth with
  | zero => exact runsAccount_of_rules fun _ h => absurd (h.enough rfl) (Nat.not_lt_zero _)
  | succ depth ih => exact runsAccount_of_rules (accounts_rule ih)

end

end Packrat
