import Packrat.Proofs.Engine.Simulation

/-!
# Grammars in use

A workspace is *in use* when, from wherever it started, closed blueprints have been built in it,
grammars have been put together from copies of those, sources have been made, and the grammars have
been parsed with, in any order and any number of times, whatever each parse came to. Anything else
may have happened in between, so long as rules, caches and sources stayed as they were: all rules
keep an owner.

* **`Bench.Step`** — one of these steps, from one workspace to the next, with what can be parsed in
  each. Copies share their rules and caches (`Assembled`).
* **`Workspace.InUse`** — the workspaces in use, with the grammars that can be parsed with and the
  sources that can be parsed.
* **`Legend.Explains`** — the invariant: a legend that the workspace agrees with, in which every
  grammar reads as the plain form of its blueprint, and every rule that is explained is out of use.
* **`Legend.Explains.step`** — a step keeps it; **`Workspace.InUse.explained`** — so it holds of
  every workspace in use, by induction on how it came to be.
* **`Workspace.InUse.settles`** — so every run follows the course of its blueprint.
-/

namespace Packrat

/-! ## Steps

A history is made of steps, whatever it is told for: for the outcomes of parses here, and for what
happens to the caches on the way elsewhere. -/

/-- The grammar is put together from copies of others. The copies share their rules and caches. -/
inductive Assembled (pool : List (Blueprint × Grammar)) : Blueprint → Grammar → Prop where
  | copy {b : Blueprint} {g : Grammar} (h : (b, g) ∈ pool) : Assembled pool b g
  | literal (token : String) : Assembled pool (.literal token) (.literal token)
  | chars (cls : CharClass) : Assembled pool (.chars cls) (.chars cls)
  | accept (value : Value) : Assembled pool (.accept value) (.accept value)
  | map {b : Blueprint} {g : Grammar} (f : Value → Value) (h : Assembled pool b g) :
      Assembled pool (.map f b) (.map f g)
  | tryMap {b : Blueprint} {g : Grammar} (f : Value → Except String Value)
      (h : Assembled pool b g) : Assembled pool (.tryMap f b) (.tryMap f g)
  | seq {b b' : Blueprint} {g g' : Grammar} (h : Assembled pool b g) (h' : Assembled pool b' g') :
      Assembled pool (.seq b b') (.seq g g')
  | alt {b b' : Blueprint} {g g' : Grammar} (h : Assembled pool b g) (h' : Assembled pool b' g') :
      Assembled pool (.alt b b') (.alt g g')
  | rep {b : Blueprint} {g : Grammar} (h : Assembled pool b g) : Assembled pool (.rep b) (.rep g)
  | required {b : Blueprint} {g : Grammar} (message : String) (h : Assembled pool b g) :
      Assembled pool (.required message b) (.required message g)

namespace Assembled

variable {pool : List (Blueprint × Grammar)} {b : Blueprint} {g : Grammar}

/-- A legend that reads the grammars of the pool reads what is put together from them. -/
theorem reads {L : Legend} (hpool : ∀ {b g}, (b, g) ∈ pool → L.Reads [] g b.plain)
    (h : Assembled pool b g) : L.Reads [] g b.plain := by
  induction h with
  | copy h => exact hpool h
  | literal token => exact .literal token
  | chars cls => exact .chars cls
  | accept value => exact .accept value
  | map f _ ih => exact .map ih
  | tryMap f _ ih => exact .tryMap ih
  | seq _ _ ih ih' => exact .seq ih ih'
  | alt _ _ ih ih' => exact .alt ih ih'
  | rep _ ih => exact .rep ih
  | required message _ ih => exact .required ih

/-- What is put together from closed blueprints is closed. -/
theorem closed (hpool : ∀ {b g}, (b, g) ∈ pool → b.closed [] = true) (h : Assembled pool b g) :
    b.closed [] = true := by
  induction h with
  | copy h => exact hpool h
  | literal token => rfl
  | chars cls => rfl
  | accept value => rfl
  | map f _ ih => exact ih
  | tryMap f _ ih => exact ih
  | seq _ _ ih ih' => exact Bool.and_eq_true_iff.2 ⟨ih, ih'⟩
  | alt _ _ ih ih' => exact Bool.and_eq_true_iff.2 ⟨ih, ih'⟩
  | rep _ ih => exact ih
  | required message _ ih => exact ih

end Assembled

/-- A workspace, the grammars that can be parsed with, by the blueprints that they stand for, and
the sources. -/
structure Bench where
  pool : List (Blueprint × Grammar)
  known : List Source
  workspace : Workspace

namespace Bench

/-- What comes of a parse. -/
def parsed (u : Bench) (g : Grammar) (c : Cursor) : Bench :=
  ⟨u.pool, u.known, (u.workspace.parse g c).2⟩

/-- One step of a history: a closed blueprint is built, grammars are put together from copies, a
source is made, or there is a parse at any cursor of a source, with an outcome that is allowed. -/
inductive Step (allowed : Outcome → Prop) (u : Bench) : Bench → Prop where
  | build {b : Blueprint} {g : Grammar} {w : Workspace} (hb : b.closed [] = true)
      (hbuild : u.workspace.build b = (.ok g, w)) : Step allowed u ⟨(b, g) :: u.pool, u.known, w⟩
  | assemble {b : Blueprint} {g : Grammar} (hg : Assembled u.pool b g) :
      Step allowed u ⟨(b, g) :: u.pool, u.known, u.workspace⟩
  | source (text : String) :
      Step allowed u ⟨u.pool, (u.workspace.newSource text).1 :: u.known,
        (u.workspace.newSource text).2⟩
  | parse {b : Blueprint} {g : Grammar} {c : Cursor} (hg : (b, g) ∈ u.pool) (hc : c.Valid)
      (hs : c.source ∈ u.known) (hallowed : allowed (u.workspace.parse g c).1) :
      Step allowed u (u.parsed g c)

/-- A step with allowed outcomes is a step with any outcomes that include those. -/
theorem Step.mono {allowed allowed' : Outcome → Prop} {u u' : Bench}
    (h : ∀ o, allowed o → allowed' o) (hstep : Step allowed u u') : Step allowed' u u' := by
  cases hstep with
  | build hb hbuild => exact .build hb hbuild
  | assemble hg => exact .assemble hg
  | source text => exact .source text
  | parse hg hc hs hallowed => exact .parse hg hc hs (h _ hallowed)

end Bench

/-! ## Workspaces in use

Claims about parses are made of a workspace at any point of such a history. Nothing has to be known
of how it began. -/

namespace Workspace

/-- The sources have been made, and have one text for each number. -/
structure Holds (w : Workspace) (known : List Source) : Prop where
  made : ∀ s ∈ known, s.id < w.sources
  unique : ∀ s ∈ known, ∀ t ∈ known, s.id = t.id → s = t

/-- Without a source there is nothing to be told apart. -/
theorem holds_nil (w : Workspace) : w.Holds [] where
  made s hs := by cases hs
  unique s hs := by cases hs

/-- The rules, caches and sources of the first workspace are in the second one as they were. -/
structure Spares (w w' : Workspace) : Prop where
  rules : ∀ (id : RuleId) (r : Rule), w.rules[id]? = some r → w'.rules[id]? = some r
  caches : ∀ (k : CacheId) (entries : Cache), w.caches[k]? = some entries →
    w'.caches[k]? = some entries
  sources : w.sources ≤ w'.sources

/-- The workspace is in use: from wherever it started, any number of steps have been made, with
parses of whatever outcome, so that the grammars of the pool stand for their blueprints and the
sources can be parsed. -/
inductive InUse : List (Blueprint × Grammar) → List Source → Workspace → Prop where
  | start {known : List Source} {w : Workspace} (h : w.Holds known) : InUse [] known w
  | step {pool : List (Blueprint × Grammar)} {known : List Source} {w : Workspace} {u : Bench}
      (h : InUse pool known w) (hstep : Bench.Step (fun _ => True) ⟨pool, known, w⟩ u) :
      InUse u.pool u.known u.workspace
  -- whatever else is done that leaves rules, caches and sources as they are
  | meanwhile {pool : List (Blueprint × Grammar)} {known : List Source} {w w' : Workspace}
      (h : InUse pool known w) (hspares : w.Spares w') : InUse pool known w'

namespace InUse

variable {pool : List (Blueprint × Grammar)} {known : List Source} {w w' : Workspace}
  {b : Blueprint} {g : Grammar} {c : Cursor}

theorem build (h : InUse pool known w) (hb : b.closed [] = true)
    (hbuild : w.build b = (.ok g, w')) : InUse ((b, g) :: pool) known w' :=
  h.step (.build hb hbuild)

theorem source (h : InUse pool known w) (text : String) :
    InUse pool ((w.newSource text).1 :: known) (w.newSource text).2 :=
  h.step (.source text)

theorem parse (h : InUse pool known w) (hg : (b, g) ∈ pool) (hc : c.Valid) (hs : c.source ∈ known) :
    InUse pool known (w.parse g c).2 :=
  h.step (.parse hg hc hs trivial)

end InUse

end Workspace

/-! ## The invariant

A legend is not part of a workspace; that there is one is the invariant. At the beginning it
explains the sources only, and it grows with every step. -/

namespace Legend

variable {L L' : Legend} {w w' : Workspace} {known : List Source}
  {pool : List (Blueprint × Grammar)}

def ofSources (known : List Source) : Legend :=
  { empty with text := fun i => (known.find? fun s => s.id == i).map Source.text }

theorem text_ofSources (h : w.Holds known) {s : Source} (hs : s ∈ known) :
    (ofSources known).text s.id = some s.text := by
  show (known.find? _).map _ = _
  cases hfind : known.find? fun t => t.id == s.id with
  | none =>
    have hnone := List.find?_eq_none.1 hfind s hs
    simp at hnone
  | some t =>
    have hid : t.id = s.id := by simpa using List.find?_some hfind
    rw [h.unique t (List.mem_of_find?_eq_some hfind) s hs hid]
    rfl

theorem coherent_ofSources (h : w.Holds known) : (ofSources known).Coherent w where
  rule h := by cases h
  sound h := by cases h
  cache h := by cases h
  entry h := by cases h
  source := by
    intro i cs hi
    obtain ⟨s, hfind, _⟩ := Option.map_eq_some_iff.1 hi
    have hid : s.id = i := by simpa using List.find?_some hfind
    rw [← hid]
    exact h.made s (List.mem_of_find?_eq_some hfind)

/-- The legend explains the workspace, what has been built in it and what can be parsed, and no
rule of it is entered. -/
structure Explains (L : Legend) (pool : List (Blueprint × Grammar)) (known : List Source)
    (w : Workspace) : Prop where
  coherent : L.Coherent w
  reads : ∀ {b g}, (b, g) ∈ pool → L.Reads [] g b.plain
  text : ∀ {s}, s ∈ known → L.text s.id = some s.text
  idle : ∀ {id plan}, L.plan id = some plan → w.marker id = none

/-- What a construction adds is explained as well: new rules have not been entered. -/
theorem Explains.grows (h : L.Explains pool known w) {scope : Scope} {Γ : Context}
    (hΓ : L.Scoped scope Γ) {n : Nat} (hgrows : L.Grows w scope n L' w') :
    L'.Explains pool known w' := by
  refine ⟨h.coherent.grows hΓ hgrows, fun hmem => (h.reads hmem).mono hgrows.le, ?_, ?_⟩
  · intro s hs
    rw [hgrows.text]
    exact h.text hs
  · intro id plan hid
    rw [hgrows.marker]
    rcases hgrows.plan hid with hold | ⟨hge, _⟩
    · exact h.idle hold
    · -- a rule that has just been made was not there to be entered
      exact w.marker_eq_none hge

/-- What can be read can be parsed with. -/
theorem Explains.cons (h : L.Explains pool known w) {b : Blueprint} {g : Grammar}
    (hg : L.Reads [] g b.plain) : L.Explains ((b, g) :: pool) known w := by
  refine ⟨h.coherent, fun hmem => ?_, h.text, h.idle⟩
  rcases List.mem_cons.1 hmem with heq | hmem
  · cases heq
    exact hg
  · exact h.reads hmem

theorem Explains.build (h : L.Explains pool known w) {b : Blueprint} (hb : b.closed [] = true) :
    ∃ (L' : Legend) (g : Grammar) (w' : Workspace), w.build b = (.ok g, w')
      ∧ L'.Explains ((b, g) :: pool) known w' := by
  obtain ⟨L', g, w', hbuild, hgrows, hg⟩ := @makes_build [] b hb L w h.coherent.below
  exact ⟨L', g, w', hbuild, (h.grows .nil hgrows).cons hg⟩

/-- The next number is free for a source of any text. -/
theorem Coherent.newSource (h : L.Coherent w) (text : String) :
    ∃ L', L.Le L' ∧ L'.plan = L.plan ∧ L'.text w.sources = some text.toList
      ∧ L'.Coherent (w.newSource text).2 := by
  let L' : Legend := { L with
    text := fun i => if i = w.sources then some text.toList else L.text i }
  have hle : L.Le L' := {
    plan := id
    parser := id
    text := fun {i cs} hi => by
      -- the numbers explained so far are those of sources made so far, so this one is free
      have hlt := h.source hi
      show (if i = w.sources then _ else _) = _
      rw [if_neg (Nat.ne_of_lt hlt), hi] }
  refine ⟨L', hle, rfl, if_pos rfl, ?_⟩
  exact {
    rule := fun hid => by
      obtain ⟨r, hr, hretired, hstands⟩ := h.rule hid
      exact ⟨r, hr, hretired, hstands.mono hle⟩
    sound := fun hid => (h.sound hid).mono hle
    cache := h.cache
    entry := fun hk hr => (h.entry hk hr).mono hle
    source := fun {i cs} hi => by
      show i < w.sources + 1
      by_cases hnew : i = w.sources
      · omega
      · rw [show L'.text i = L.text i from if_neg hnew] at hi
        exact Nat.lt_succ_of_lt (h.source hi) }

/-- Making a source keeps the workspace explained. -/
theorem Explains.newSource (h : L.Explains pool known w) (text : String) :
    ∃ L' : Legend, L'.Explains pool ((w.newSource text).1 :: known) (w.newSource text).2 := by
  obtain ⟨L', hle, hplan, htext, hw'⟩ := h.coherent.newSource text
  refine ⟨L', hw', fun hmem => (h.reads hmem).mono hle, ?_, ?_⟩
  · intro s hs
    rcases List.mem_cons.1 hs with rfl | hs
    · exact htext
    · exact hle.text (h.text hs)
  · intro id plan hid
    rw [hplan] at hid
    exact h.idle hid

/-- What else is done does not matter if it spares rules, caches and sources. -/
theorem Explains.spares (h : L.Explains pool known w) (hspares : w.Spares w') :
    L.Explains pool known w' where
  coherent := {
    rule := fun hid => by
      obtain ⟨r, hr, hrest⟩ := h.coherent.rule hid
      exact ⟨r, hspares.rules _ r hr, hrest⟩
    sound := h.coherent.sound
    cache := fun hk => by
      have hlt := h.coherent.cache hk
      exact lt_of_getElem?_eq_some (hspares.caches _ _ (Array.getElem?_eq_getElem hlt))
    entry := fun {k scope b p r} hk hr => by
      -- a cache that is explained was there, so it still has the same entries
      have hsame := hspares.caches k _ (Array.getElem?_eq_getElem (h.coherent.cache hk))
      refine h.coherent.entry hk ?_
      rw [Workspace.cachedAt?, hsame] at hr
      rw [Workspace.cachedAt?, Array.getElem?_eq_getElem (h.coherent.cache hk)]
      exact hr
    source := fun hi => Nat.lt_of_lt_of_le (h.coherent.source hi) hspares.sources }
  reads := h.reads
  text := h.text
  idle := fun {id plan} hid => by
    obtain ⟨r, hr, _⟩ := h.coherent.rule hid
    have hidle := h.idle hid
    rw [Workspace.marker, hr] at hidle
    rw [Workspace.marker, hspares.rules id r hr]
    exact hidle

/-- What has been built inside the rules of a scope is ready to run at any cursor of the sources,
with the guard to the depth that a parse provides for, while those rules are alive. -/
theorem Explains.ready_inside (h : L.Explains pool known w) {scope : Scope} {Γ : Context}
    (hΓ : L.Scoped scope Γ) (hactive : ∀ e ∈ scope, e.2 ∈ w.active) (b : Blueprint) {c : Cursor}
    (hc : c.Valid) (hs : c.source ∈ known) {mode : Mode}
    (hdepth : mode.guarded = true → w.depthBudget c ≤ mode.depth) :
    Ready mode L c.source scope Γ (.parse Γ b.plain c.rest) w where
  coherent := h.coherent
  known := h.text hs
  inside := hc.rest_suffix
  context := hΓ
  active := hactive
  onPath := by
    intro id plan p hid hp
    rw [h.idle hid] at hp
    cases hp
  enough hguarded := Nat.lt_of_lt_of_le (w.headroom_lt_depthBudget _ c) (hdepth hguarded)

theorem Explains.ready (h : L.Explains pool known w) (b : Blueprint) {c : Cursor} (hc : c.Valid)
    (hs : c.source ∈ known) {mode : Mode}
    (hdepth : mode.guarded = true → w.depthBudget c ≤ mode.depth) :
    Ready mode L c.source [] [] (.parse [] b.plain c.rest) w :=
  h.ready_inside .nil (fun _ he => nomatch he) b hc hs hdepth

theorem Explains.performs_inside (h : L.Explains pool known w) {scope : Scope} {Γ : Context}
    (hΓ : L.Scoped scope Γ) (hactive : ∀ e ∈ scope, e.2 ∈ w.active) {b : Blueprint} {g : Grammar}
    (hg : L.Reads scope g b.plain) {c : Cursor} (hc : c.Valid) (hs : c.source ∈ known) (mode : Mode)
    (hdepth : mode.guarded = true → w.depthBudget c ≤ mode.depth) :
    Performs mode L c.source w (Goal.parse Γ b.plain c.rest).course (g.run mode.parseRule c w) := by
  have hperforms := run_performs c.source mode.guarded mode.depth hg
    (h.ready_inside hΓ hactive b hc hs hdepth)
  rwa [hc.eq_before] at hperforms

theorem Explains.performs (h : L.Explains pool known w) {b : Blueprint} {g : Grammar}
    (hg : (b, g) ∈ pool) {c : Cursor} (hc : c.Valid) (hs : c.source ∈ known) (mode : Mode)
    (hdepth : mode.guarded = true → w.depthBudget c ≤ mode.depth) :
    Performs mode L c.source w (Goal.parse [] b.plain c.rest).course
      (g.run mode.parseRule c w) :=
  h.performs_inside .nil (fun _ he => nomatch he) (h.reads hg) hc hs mode hdepth

/-- A parse keeps the workspace explained, whatever it comes to: every rule is left again. -/
theorem Explains.parse (h : L.Explains pool known w) {b : Blueprint} {g : Grammar}
    (hg : (b, g) ∈ pool) {c : Cursor} (hc : c.Valid) (hs : c.source ∈ known) :
    ∃ L' : Legend, L'.Explains pool known (w.parse g c).2 := by
  obtain ⟨L', hpass, _⟩ := h.performs hg hc hs ⟨true, w.depthBudget c⟩ fun _ => Nat.le_refl _
  refine ⟨L', hpass.coherent, fun hmem => (h.reads hmem).mono hpass.toLe,
    fun hs => hpass.text (h.text hs), ?_⟩
  intro id plan hid
  have hmarker : (w.parse g c).2.marker id = w.marker id := hpass.keeps.marker id
  rw [hmarker]
  rcases hpass.fresh hid with hold | hge
  · exact h.idle hold
  · exact w.marker_eq_none hge

/-- **One step of a history keeps the workspace explained.** -/
theorem Explains.step {allowed : Outcome → Prop} {u : Bench} (h : L.Explains pool known w)
    (hstep : Bench.Step allowed ⟨pool, known, w⟩ u) :
    ∃ L' : Legend, L'.Explains u.pool u.known u.workspace := by
  cases hstep with
  | build hb hbuild =>
    -- the construction that was made is the one that is known to succeed
    obtain ⟨L', g', w', hbuild', hL'⟩ := h.build hb
    cases hbuild.symm.trans hbuild'
    exact ⟨L', hL'⟩
  | assemble hg => exact ⟨L, h.cons (hg.reads h.reads)⟩
  | source text => exact h.newSource text
  | parse hg hc hs _ => exact h.parse hg hc hs

end Legend

namespace Workspace.InUse

variable {pool : List (Blueprint × Grammar)} {known : List Source} {w : Workspace}

/-- Every workspace in use is explained. Induction on how it came to be. -/
theorem explained (h : InUse pool known w) : ∃ L : Legend, L.Explains pool known w := by
  induction h with
  | start h =>
    refine ⟨.ofSources _, Legend.coherent_ofSources h, ?_, Legend.text_ofSources h, ?_⟩
    · intro b g hmem
      cases hmem
    · intro id plan hid
      cases hid
  | step _ hstep ih =>
    obtain ⟨L, hL⟩ := ih
    exact hL.step hstep
  | meanwhile _ hspares ih =>
    obtain ⟨L, hL⟩ := ih
    exact ⟨L, hL.spares hspares⟩

/-- A closed blueprint can be built in any workspace in use. -/
theorem exists_build (h : InUse pool known w) {b : Blueprint} (hb : b.closed [] = true) :
    ∃ g w', w.build b = (.ok g, w') ∧ InUse ((b, g) :: pool) known w' := by
  obtain ⟨L, hL⟩ := h.explained
  obtain ⟨_, g, w', hbuild, _⟩ := hL.build hb
  exact ⟨g, w', hbuild, .build h hb hbuild⟩

/-- **Every run follows the course of its blueprint**: with the guard, to the depth that a parse
provides for or any greater one, and without it, to any depth. -/
theorem settles (h : InUse pool known w) {b : Blueprint} {g : Grammar} (hg : (b, g) ∈ pool)
    {c : Cursor} (hc : c.Valid) (hs : c.source ∈ known) (mode : Mode)
    (hdepth : mode.guarded = true → w.depthBudget c ≤ mode.depth) :
    Settles mode c.source w (Goal.parse [] b.plain c.rest).course (g.run mode.parseRule c w) := by
  obtain ⟨L, hL⟩ := h.explained
  obtain ⟨_, _, hsettles⟩ := hL.performs hg hc hs mode hdepth
  exact hsettles

/-- In particular a parse does. -/
theorem settles_parse (h : InUse pool known w) {b : Blueprint} {g : Grammar} (hg : (b, g) ∈ pool)
    {c : Cursor} (hc : c.Valid) (hs : c.source ∈ known) :
    Settles ⟨true, w.depthBudget c⟩ c.source w (Goal.parse [] b.plain c.rest).course
      (w.parse g c) :=
  h.settles hg hc hs ⟨true, w.depthBudget c⟩ fun _ => Nat.le_refl _

end Workspace.InUse

/-! ## A rule that comes back to itself

A blueprint with a cache and a left-recursive rule, of which later statements have their instances.
-/

/-- Sums of ones, with a cache. The rule is left-recursive: before anything but a one it asks for
itself at once. -/
def Blueprint.sums : Blueprint :=
  .rule ⟨"sum", false, none⟩
    (.memo none (.alt (.literal "1") (.seq (.self "sum") (.literal "+1"))))

/-- The workspace in which the sums and a source of the given text are all that there is. -/
def Workspace.withSums (text : String) : Workspace :=
  ((Workspace.empty.newSource text).2.build .sums).2

theorem Workspace.inUse_withSums (text : String) :
    InUse [(.sums, .rule .owned 0)] [⟨0, text.toList⟩] (withSums text) :=
  .build (.source (.start empty.holds_nil) text) rfl rfl

end Packrat
