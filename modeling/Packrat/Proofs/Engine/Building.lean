import Packrat.Proofs.Engine.Legend

/-!
# Building closed blueprints

Building a closed blueprint always succeeds, and what comes out reads as the plain form of the
blueprint, in a legend that explains the new rules and caches as well.

* **`Legend.Grows`** — the frame: a construction adds rules that wait for their bodies and caches
  that are empty, and leaves everything else as it was.
* **`Legend.Makes`** — an action of a construction succeeds, only adds, and has a result with the
  given property. It is put together by one rule for results (`Makes.pure`), one for sequences
  (`Makes.bind`), and one for each way in which the workspace is extended.
* **`makes_build`** — the main statement, by induction on the blueprint: one case per constructor,
  each a few of these rules.
* **`Legend.Coherent.definition`** — so a rule that is parsed for the first time gets the definition
  that was planned, and a workspace that agreed with its legend still does.
-/

namespace Packrat

namespace Legend

/-! ## The frame of a construction

A construction only ever adds. So a legend grows along with the workspace, and what has been read
before can be read still. -/

/-- A construction in the scope takes the first workspace to the second one, with room for `n` more
rules, and the second legend explains what it has added: rules that wait for their bodies, and
empty caches. -/
structure Grows (L : Legend) (w : Workspace) (scope : Scope) (n : Nat) (L' : Legend)
    (w' : Workspace) : Prop where
  le : L.Le L'
  size : w.rules.size ≤ w'.rules.size
  rules : ∀ {id}, id < w.rules.size → w'.rules[id]? = w.rules[id]?
  plan : ∀ {id plan}, L'.plan id = some plan → L.plan id = some plan
    ∨ (w.rules.size ≤ id ∧ w'.rules[id]? = some ⟨.pending plan, none, false⟩ ∧ plan.scope = scope
      ∧ plan.body.closed (plan.label.name :: scope.map (·.1)) = true)
  marker : ∀ id, w'.marker id = w.marker id
  cacheSize : w.caches.size ≤ w'.caches.size
  caches : ∀ {k}, k < w.caches.size → w'.caches[k]? = w.caches[k]?
  parser : ∀ {k x}, L'.parser k = some x → L.parser k = some x
    ∨ (w.caches.size ≤ k ∧ w'.caches[k]? = some ∅)
  text : L'.text = L.text
  /-- The new rules count, and so do those that their bodies describe. -/
  budget : w'.ruleBudget = w.ruleBudget + n
  sources : w'.sources = w.sources
  active : w'.active = w.active
  events : w'.events = w.events

/-- The legend explains nothing that is not there yet. -/
structure Below (L : Legend) (w : Workspace) : Prop where
  plan : ∀ {id plan}, L.plan id = some plan → id < w.rules.size
  parser : ∀ {k x}, L.parser k = some x → k < w.caches.size

section

variable {L L' L'' : Legend} {w w' w'' : Workspace} {scope : Scope} {n m : Nat}

theorem lt_of_getElem?_eq_some {α : Type} {xs : Array α} {i : Nat} {x : α}
    (h : xs[i]? = some x) : i < xs.size :=
  (Array.getElem?_eq_some_iff.1 h).1

/-- What a construction adds and explains is there afterwards. -/
theorem Below.grows (hL : L.Below w) (h : L.Grows w scope n L' w') : L'.Below w' where
  plan hid := by
    rcases h.plan hid with hold | ⟨_, hnew, _⟩
    · exact Nat.lt_of_lt_of_le (hL.plan hold) h.size
    · exact lt_of_getElem?_eq_some hnew
  parser hk := by
    rcases h.parser hk with hold | ⟨_, hnew⟩
    · exact Nat.lt_of_lt_of_le (hL.parser hold) h.cacheSize
    · exact lt_of_getElem?_eq_some hnew

theorem Grows.refl (L : Legend) (w : Workspace) (scope : Scope) : L.Grows w scope 0 L w where
  le := .refl L
  size := Nat.le_refl _
  rules _ := rfl
  plan := Or.inl
  marker _ := rfl
  cacheSize := Nat.le_refl _
  caches _ := rfl
  parser := Or.inl
  text := rfl
  budget := rfl
  sources := rfl
  active := rfl
  events := rfl

/-- Constructions one after the other make room for the rules of both. -/
theorem Grows.trans (h : L.Grows w scope n L' w') (h' : L'.Grows w' scope m L'' w'') :
    L.Grows w scope (n + m) L'' w'' where
  le := h.le.trans h'.le
  size := h.size.trans h'.size
  rules hid := (h'.rules (Nat.lt_of_lt_of_le hid h.size)).trans (h.rules hid)
  plan hid := by
    rcases h'.plan hid with hmid | ⟨hge, hnew⟩
    · rcases h.plan hmid with hold | ⟨hge, hnew, hscope⟩
      · exact Or.inl hold
      · -- added by the first construction, left alone by the second
        exact Or.inr ⟨hge, (h'.rules (lt_of_getElem?_eq_some hnew)).trans hnew, hscope⟩
    -- added by the second construction
    · exact Or.inr ⟨h.size.trans hge, hnew⟩
  marker id := (h'.marker id).trans (h.marker id)
  cacheSize := h.cacheSize.trans h'.cacheSize
  caches hk := (h'.caches (Nat.lt_of_lt_of_le hk h.cacheSize)).trans (h.caches hk)
  parser hk := by
    rcases h'.parser hk with hmid | ⟨hge, hnew⟩
    · rcases h.parser hmid with hold | ⟨hge, hnew⟩
      · exact Or.inl hold
      · exact Or.inr ⟨hge, (h'.caches (lt_of_getElem?_eq_some hnew)).trans hnew⟩
    · exact Or.inr ⟨h.cacheSize.trans hge, hnew⟩
  text := h'.text.trans h.text
  budget := by rw [h'.budget, h.budget, Nat.add_assoc]
  sources := h'.sources.trans h.sources
  active := h'.active.trans h.active
  events := h'.events.trans h.events

end

/-! ## Actions

A construction is a sequence of actions, each of which may fail. Of a closed blueprint none does;
this and what is added are shown together, action by action. -/

/-- In the workspace the action succeeds and only adds to it, with room for `n` more rules; its
result has the property in the legend after it. -/
def Makes (L : Legend) (w : Workspace) (scope : Scope) (n : Nat) {α : Type} (x : Build α)
    (post : Legend → α → Prop) : Prop :=
  ∃ L' a w', x.run w = (.ok a, w') ∧ L.Grows w scope n L' w' ∧ post L' a

section

variable {α β : Type} {L : Legend} {w : Workspace} {scope : Scope} {n m : Nat}
  {post : Legend → α → Prop} {post' : Legend → β → Prop}

/-- A result is given at once. -/
theorem Makes.pure {a : α} (h : post L a) : L.Makes w scope 0 (Pure.pure a : Build α) post :=
  ⟨L, a, w, rfl, .refl L w scope, h⟩

/-- After a result, the action that follows is run on it. -/
theorem run_bind_ok {x : Build α} {f : α → Build β} {a : α} {w' : Workspace}
    (h : x.run w = (.ok a, w')) : (x >>= f).run w = (f a).run w' := by
  show (match x.run w with
    | (r, w') => (ExceptT.bindCont f r : StateM Workspace (Except Fault β)) w') = _
  rw [h]
  rfl

/-- **Actions one after the other.** The second one is looked at in the legend that the first one
has left. -/
theorem Makes.bind {x : Build α} {f : α → Build β} (hL : L.Below w)
    (hx : L.Makes w scope n x post)
    (hf : ∀ L' a w', L'.Below w' → L.Le L' → post L' a → L'.Makes w' scope m (f a) post') :
    L.Makes w scope (n + m) (x >>= f) post' := by
  obtain ⟨L', a, w', hrun, hgrows, ha⟩ := hx
  obtain ⟨L'', b, w'', hrun', hgrows', hb⟩ := hf L' a w' (hL.grows hgrows) hgrows.le ha
  exact ⟨L'', b, w'', (run_bind_ok hrun).trans hrun', hgrows.trans hgrows', hb⟩

/-- A result may be put into another form. -/
theorem Makes.map {x : Build α} {f : α → β} (hx : L.Makes w scope n x post)
    (hf : ∀ L' a, L.Le L' → post L' a → post' L' (f a)) :
    L.Makes w scope n (x >>= fun a => (Pure.pure (f a) : Build β)) post' := by
  obtain ⟨L', a, w', hrun, hgrows, ha⟩ := hx
  exact ⟨L', f a, w', run_bind_ok hrun, hgrows, hf L' a hgrows.le ha⟩

/-- An action on a part of the workspace that no legend explains. -/
theorem makes_modify (f : Workspace → Workspace) (hrules : (f w).rules = w.rules)
    (hcaches : (f w).caches = w.caches) (hsources : (f w).sources = w.sources)
    (hactive : (f w).active = w.active) (hevents : (f w).events = w.events) :
    L.Makes w scope 0 (modify f : Build Unit) fun _ _ => True := by
  refine ⟨L, (), f w, rfl, ?_, trivial⟩
  exact {
    le := .refl L
    size := by rw [hrules]
    rules := fun _ => by rw [hrules]
    plan := Or.inl
    marker := fun id => by rw [Workspace.marker, Workspace.marker, hrules]
    cacheSize := by rw [hcaches]
    caches := fun _ => by rw [hcaches]
    parser := Or.inl
    text := rfl
    budget := by rw [Workspace.ruleBudget, Workspace.ruleBudget, hrules]; rfl
    sources := hsources
    active := hactive
    events := hevents }

/-- A new cache, for the results of the given blueprint. -/
theorem makes_newCache (hL : L.Below w) (b : Blueprint) :
    L.Makes w scope 0 (modifyGet Workspace.newCache : Build CacheId) fun L' k =>
      L'.parser k = some (scope, b) := by
  let L' : Legend := { L with
    parser := fun k => if k = w.caches.size then some (scope, b) else L.parser k }
  refine ⟨L', w.caches.size, w.newCache.2, rfl, ?_, if_pos rfl⟩
  have hpush : ∀ k, w.newCache.2.caches[k]?
      = if k = w.caches.size then some ∅ else w.caches[k]? := fun k => Array.getElem?_push
  exact {
    le := {
      plan := id
      parser := fun {k x} hk => by
        have hlt := hL.parser hk
        show (if k = w.caches.size then _ else _) = _
        rw [if_neg (Nat.ne_of_lt hlt), hk]
      text := id }
    size := Nat.le_refl _
    rules := fun _ => rfl
    plan := Or.inl
    marker := fun _ => rfl
    cacheSize := by
      show w.caches.size ≤ (w.caches.push ∅).size
      rw [Array.size_push]
      omega
    caches := fun {k} hk => by rw [hpush, if_neg (Nat.ne_of_lt hk)]
    parser := fun {k x} hk => by
      by_cases hnew : k = w.caches.size
      · exact Or.inr ⟨Nat.le_of_eq hnew.symm, by rw [hpush, if_pos hnew]⟩
      · left
        rwa [show L'.parser k = L.parser k from if_neg hnew] at hk
    text := rfl
    budget := rfl
    sources := rfl
    active := rfl
    events := rfl }

/-- New caches, one for each of the given blueprints. -/
theorem makes_newCaches (bs : List Blueprint) (hL : L.Below w) :
    L.Makes w scope 0 (modifyGet (Workspace.newCaches bs.length) : Build (List CacheId))
      fun L' ks => List.Forall₂ (fun k b => L'.parser k = some (scope, b)) ks bs := by
  induction bs generalizing L w with
  | nil => exact ⟨L, [], w, rfl, .refl L w scope, .nil⟩
  | cons b bs ih =>
    obtain ⟨L', k, w', hrun, hgrows, hk⟩ := @makes_newCache L w scope hL b
    obtain ⟨L'', ks, w'', hrun', hgrows', hks⟩ := ih (hL.grows hgrows)
    have hfirst : w.newCache = (k, w') := by
      cases hrun
      rfl
    have hmore : Workspace.newCaches bs.length w' = (ks, w'') := by
      have hcaches : (modifyGet (Workspace.newCaches bs.length) : Build (List CacheId)).run w'
        = (.ok (Workspace.newCaches bs.length w').1, (Workspace.newCaches bs.length w').2) := rfl
      rw [hcaches] at hrun'
      cases hrun'
      rfl
    refine ⟨L'', k :: ks, w'', ?_, hgrows.trans hgrows', .cons (hgrows'.le.parser hk) hks⟩
    show (Except.ok (Workspace.newCaches (bs.length + 1) w).1,
      (Workspace.newCaches (bs.length + 1) w).2) = _
    rw [Workspace.newCaches]
    simp only [hfirst, hmore]

/-- A new rule, with a body that is closed in its scope. -/
theorem makes_newRule (hL : L.Below w) (label : RuleLabel) {body : Blueprint}
    (hbody : body.closed (label.name :: scope.map (·.1)) = true) :
    L.Makes w scope (body.ruleCount + 1)
      (modifyGet (·.newRule ⟨label, scope, body⟩) : Build RuleId) fun L' id =>
        L'.plan id = some ⟨label, scope, body⟩ := by
  let plan : Plan := ⟨label, scope, body⟩
  let L' : Legend := { L with
    plan := fun id => if id = w.rules.size then some plan else L.plan id }
  refine ⟨L', w.rules.size, (w.newRule plan).2, rfl, ?_, if_pos rfl⟩
  have hpush : ∀ id, (w.newRule plan).2.rules[id]?
      = if id = w.rules.size then some ⟨.pending plan, none, false⟩ else w.rules[id]? :=
    fun id => Array.getElem?_push
  exact {
    le := {
      plan := fun {id q} hid => by
        have hlt := hL.plan hid
        show (if id = w.rules.size then _ else _) = _
        rw [if_neg (Nat.ne_of_lt hlt), hid]
      parser := id
      text := id }
    size := by
      show w.rules.size ≤ (w.rules.push _).size
      rw [Array.size_push]
      omega
    rules := fun {id} hid => by rw [hpush, if_neg (Nat.ne_of_lt hid)]
    plan := fun {id q} hid => by
      by_cases hnew : id = w.rules.size
      · obtain rfl : plan = q := by
          rw [show L'.plan id = some plan from if_pos hnew] at hid
          exact Option.some.inj hid
        exact Or.inr ⟨Nat.le_of_eq hnew.symm, by rw [hpush, if_pos hnew], rfl, hbody⟩
      · left
        rwa [show L'.plan id = L.plan id from if_neg hnew] at hid
    marker := fun id => by
      rw [Workspace.marker, Workspace.marker, hpush]
      split
      next hnew => rw [hnew, Array.getElem?_eq_none (Nat.le_refl _)]; rfl
      next => rfl
    cacheSize := Nat.le_refl _
    caches := fun _ => rfl
    parser := Or.inl
    text := rfl
    -- the budget counts the rules that the body will make, and this one
    budget := by rw [Workspace.ruleBudget_newRule, Nat.add_comm 1]
    sources := rfl
    active := rfl
    events := rfl }

end

/-! ## Levels

A level reads as the chain that it stands for: the operand is built once and every copy of it reads
alike, and the cache of each step holds the results of that step. -/

section

variable {L : Legend} {scope : Scope} {g : Grammar} {b : Blueprint}

/-- A choice among many reads as the choice among what each of them reads as. -/
theorem Reads.oneOf {gs : List Grammar} {bs : List Blueprint}
    (h : List.Forall₂ (L.Reads scope) gs bs) : L.Reads scope (.oneOf gs) (.firstOf bs) := by
  induction h with
  | nil => exact .chars .empty
  | cons hhead _ ih => exact .alt hhead ih

/-- One step of a level reads as the link that it stands for. -/
theorem Reads.link (h : L.Reads scope g b) (assoc : Assoc) (index : Nat) (token : String) :
    L.Reads scope (assoc.step g index token) (assoc.link b index token) := by
  cases assoc with
  | left => exact .map (.map (.seq (.literal token) h))
  | right => exact .map (.map (.seq h (.literal token)))

/-- The steps of a level read as its links, each of them with a cache for that link. -/
theorem Reads.steps (h : L.Reads scope g b) (assoc : Assoc) (ops : List Operator) (start : Nat)
    {ks : List CacheId}
    (hks : List.Forall₂ (fun k b => L.parser k = some (scope, b)) ks
      ((ops.zipIdx start).map fun (op, index) => assoc.link b index op.token)) :
    List.Forall₂ (L.Reads scope)
      (((ops.zip ks).zipIdx start).map fun ((op, k), index) =>
        .memo k (assoc.step g index op.token))
      ((ops.zipIdx start).map fun (op, index) => assoc.link b index op.token) := by
  induction ops generalizing start ks with
  | nil => exact .nil
  | cons op ops ih =>
    rw [List.zipIdx_cons, List.map_cons] at hks ⊢
    cases hks with
    | cons hk hks =>
      rw [List.zip_cons_cons, List.zipIdx_cons, List.map_cons]
      exact .cons (.memo hk (h.link assoc start op.token)) (ih (start + 1) hks)

/-- **A level reads as its chain.** -/
theorem Reads.level (h : L.Reads scope g b) (assoc : Assoc) (ops : List Operator)
    {ks : List CacheId}
    (hks : List.Forall₂ (fun k b => L.parser k = some (scope, b)) ks
      (ops.zipIdx.map fun (op, index) => assoc.link b index op.token)) :
    L.Reads scope (assoc.level g ops ks) (assoc.chain b ops) := by
  have hsteps : L.Reads scope (.rep (assoc.steps g ops ks)) (assoc.links b ops) :=
    .rep (.oneOf (h.steps assoc ops 0 hks))
  cases assoc with
  | left => exact .alt (.map (.seq h hsteps)) h
  | right => exact .alt (.map (.seq hsteps h)) h

end

theorem makes_level {L : Legend} {w : Workspace} {scope : Scope} {g : Grammar} {b : Blueprint}
    (hL : L.Below w) (h : L.Reads scope g b) (assoc : Assoc) (ops : List Operator) :
    L.Makes w scope 0
      (do
        let caches ← modifyGet (Workspace.newCaches ops.length)
        return assoc.level g (Operator.longestFirst ops) caches : Build Grammar)
      fun L' g' => L'.Reads scope g' (assoc.chain b (Operator.longestFirst ops)) := by
  have hcaches := @makes_newCaches L w scope
    ((Operator.longestFirst ops).zipIdx.map fun (op, index) => assoc.link b index op.token) hL
  rw [List.length_map, List.length_zipIdx, Operator.longestFirst,
    (sortWith_perm _ ops).length_eq] at hcaches
  exact hcaches.map fun _ _ hle hks => (h.mono hle).level assoc _ hks

/-! ## Blueprints

What is left is to go through the kinds of blueprints. A name needs its rule in scope; the kinds
that no closed blueprint is of are excluded. -/

/-- **A closed blueprint can be built, and reads as its plain form.** Induction on the
blueprint. -/
theorem makes_build {scope : Scope} (b : Blueprint) (hb : b.closed (scope.map (·.1)) = true)
    {L : Legend} {w : Workspace} (hL : L.Below w) :
    L.Makes w scope b.ruleCount (b.build scope) fun L' g => L'.Reads scope g b.plain := by
  induction b generalizing L w with
  | literal token => exact .pure (.literal token)
  | chars cls => exact .pure (.chars cls)
  | accept value => exact .pure (.accept value)
  | map f p ih => exact (ih hb hL).map fun _ _ _ h => .map h
  | tryMap f p ih => exact (ih hb hL).map fun _ _ _ h => .tryMap h
  | rep p ih => exact (ih hb hL).map fun _ _ _ h => .rep h
  | required message p ih => exact (ih hb hL).map fun _ _ _ h => .required h
  | seq a b iha ihb =>
    obtain ⟨ha, hb⟩ := Bool.and_eq_true_iff.1 hb
    exact (iha ha hL).bind hL fun _ _ _ hL' _ hg =>
      (ihb hb hL').map fun _ _ hle hg' => .seq (hg.mono hle) hg'
  | alt a b iha ihb =>
    obtain ⟨ha, hb⟩ := Bool.and_eq_true_iff.1 hb
    exact (iha ha hL).bind hL fun _ _ _ hL' _ hg =>
      (ihb hb hL').map fun _ _ hle hg' => .alt (hg.mono hle) hg'
  | memo name p ih =>
    -- the parser is built before its cache is made, and registering them touches neither
    refine (ih hb hL).bind (m := 0) hL fun L₁ g w₁ hL₁ _ hg => ?_
    refine (makes_newCache hL₁ p.plain).bind (m := 0) hL₁ fun L₂ k w₂ hL₂ hle hk => ?_
    have hread : L₂.Reads scope (.memo k g) p.plain := .memo hk (hg.mono hle)
    cases name with
    | none => exact .pure hread
    | some name =>
      exact (makes_modify (·.registerMemo name k g) rfl rfl rfl rfl rfl).map
        fun _ _ hle _ => hread.mono hle
  | count name p ih =>
    have hopen : L.Makes w scope 0 (modify (·.openCounter name) : Build Unit) fun _ _ => True := by
      refine makes_modify _ ?_ ?_ ?_ ?_ ?_ <;>
        (simp only [Workspace.openCounter]; split <;> rfl)
    have hcount : L.Makes w scope (0 + p.ruleCount) (Blueprint.build scope (.count name p))
        fun L' g => L'.Reads scope g p.plain :=
      hopen.bind hL fun _ _ _ hL' _ _ => (ih hb hL').map fun _ _ _ hg => .count hg
    rwa [Nat.zero_add] at hcount
  | level assoc ops cached operand ih =>
    obtain ⟨hops, hoperand⟩ := Bool.and_eq_true_iff.1 hb
    have hnamed : (ops.any fun op => op.token.isEmpty) = false := by simpa using hops
    rw [Blueprint.build, hnamed]
    refine (ih hoperand hL).bind (m := 0) hL fun L₁ g w₁ hL₁ _ hg => ?_
    cases cached with
    | false => exact makes_level hL₁ hg assoc ops
    | true =>
      exact (makes_newCache hL₁ operand.plain).bind (m := 0) hL₁ fun L₂ k w₂ hL₂ hle hk =>
        makes_level hL₂ (.memo hk (hg.mono hle)) assoc ops
  | rule label body => exact (makes_newRule hL label hb).map fun _ _ _ hid => .rule hid rfl
  | self name =>
    obtain ⟨id, hid⟩ := exists_lookup hb
    refine .pure ?_
    rw [hid]
    exact .self hid
  | exposed name => cases hb
  | registered name => cases hb
  | registeredMemo name => cases hb
  | unreadable reason => cases hb

/-! ## Growth keeps a workspace coherent

Coherence speaks of rules, caches and sources that are explained. Those from before are as they
were, and the new ones are as yet untouched. -/

section

variable {L L' : Legend} {w w' : Workspace} {scope : Scope} {n : Nat}

/-- What is explained of a coherent workspace is in it. -/
theorem Coherent.below (hw : L.Coherent w) : L.Below w where
  plan hid := by
    obtain ⟨r, hr, _⟩ := hw.rule hid
    exact lt_of_getElem?_eq_some hr
  parser hk := hw.cache hk

/-- New caches are empty, so every entry is an old one. -/
theorem Grows.cachedAt? (h : L.Grows w scope n L' w') (hL : L.Below w) {k : CacheId}
    {x : Scope × Blueprint} {p : Position} {r : Remembered} (hk : L'.parser k = some x)
    (hr : w'.cachedAt? k p = some r) : L.parser k = some x ∧ w.cachedAt? k p = some r := by
  unfold Workspace.cachedAt? at hr ⊢
  rcases h.parser hk with hold | ⟨_, hnew⟩
  · rw [h.caches (hL.parser hold)] at hr
    exact ⟨hold, hr⟩
  · -- a cache that the construction has added has no entries yet
    rw [hnew] at hr
    simp at hr

/-- A construction does not upset what a legend explains. -/
theorem Coherent.grows (hw : L.Coherent w) {Γ : Context} (hΓ : L.Scoped scope Γ)
    (h : L.Grows w scope n L' w') : L'.Coherent w' where
  rule hid := by
    rcases h.plan hid with hold | ⟨_, hnew, _⟩
    · obtain ⟨r, hr, hretired, hstands⟩ := hw.rule hold
      exact ⟨r, (h.rules (hw.below.plan hold)).trans hr, hretired, hstands.mono h.le⟩
    · exact ⟨_, hnew, rfl, Or.inl rfl⟩
  sound hid := by
    rcases h.plan hid with hold | ⟨_, _, hscope, hclosed⟩
    · exact (hw.sound hold).mono h.le
    · subst hscope
      exact ⟨hclosed, Γ, hΓ.mono h.le⟩
  cache hk := (hw.below.grows h).parser hk
  entry hk hr := by
    obtain ⟨hold, hrold⟩ := h.cachedAt? hw.below hk hr
    exact (hw.entry hold hrold).mono h.le
  source hi := by
    rw [h.text] at hi
    rw [h.sources]
    exact hw.source hi

end

end Legend

/-! ## The body of a rule

The body of a rule is built in the middle of a run. The rule is underway meanwhile, so the workspace
is not coherent until the construction is over and the rule is built. -/

namespace Workspace

/-- Trying a rule out in its own construction raises no alarm: the source is new, so the rule cannot
be entered there. -/
theorem aside_probe {w : Workspace} {id : RuleId} (text : String)
    (hmarker : ∀ p, w.marker id = some p → p.source < w.sources) : w.Aside (w.probe id text) := by
  have hne : ((w.newSource text).2.refusal? .weak id (w.newSource text).1.start).getD
      .underConstruction ≠ .leftRecursion := by
    cases h : (w.newSource text).2.refusal? .weak id (w.newSource text).1.start with
    | none => exact fun hcontra => nomatch hcontra
    | some refusal =>
      -- the marker would be in the new source, whose number no marker can have yet
      rintro (rfl : refusal = _)
      have hlt : w.sources < w.sources := hmarker _
        (marker_of_refusal? (w := (w.newSource text).2) h)
      omega
  have hlog := @logRefusal_of_ne (w.newSource text).2 id (w.newSource text).1.start _ hne
  exact {
    rules := (congrArg Workspace.rules hlog :)
    caches := (congrArg Workspace.caches hlog :)
    active := (congrArg Workspace.active hlog :)
    sources := by
      have hsources : (w.probe id text).sources = w.sources + 1 :=
        (congrArg Workspace.sources hlog :)
      omega
    alarms := (congrArg Workspace.alarms hlog :) }

/-- What is done to get a rule ready does not concern runs, but for the rule being underway. -/
theorem aside_beginning (w : Workspace) (id : RuleId) (plan : Plan)
    (hmarker : ∀ p, w.marker id = some p → p.source < w.sources) :
    (w.define id .underway).Aside (w.beginning id plan) := by
  have hlog : (w.define id .underway).Aside (w.underway id) :=
    ⟨rfl, rfl, rfl, Nat.le_refl _, alarms_log rfl⟩
  -- making the handle known leaves rules, caches and sources alone
  have hexposed : ∀ w₀ : Workspace, w₀.Aside (if plan.label.exposed then
      { w₀ with exposed := w₀.exposed.put plan.label.name id } else w₀) := by
    intro w₀
    split
    · exact ⟨rfl, rfl, rfl, Nat.le_refl _, rfl⟩
    · exact ⟨rfl, rfl, rfl, Nat.le_refl _, rfl⟩
  have hnamed := hlog.trans (hexposed _)
  unfold beginning
  simp only
  generalize (if plan.label.exposed then _ else _ : Workspace) = w₁ at hnamed ⊢
  have hmarker₁ : ∀ p, w₁.marker id = some p → p.source < w₁.sources := by
    intro p hp
    rw [marker, hnamed.rules] at hp
    exact Nat.lt_of_lt_of_le (hmarker p ((marker_define w id .underway id).symm.trans hp))
      hnamed.sources
  split
  · exact hnamed.trans (aside_probe _ hmarker₁)
  · exact hnamed

end Workspace

namespace Legend

/-- The second legend explains more, but no rule that was there before and no source. -/
structure Extends (L : Legend) (w : Workspace) (L' : Legend) : Prop extends L.Le L' where
  /-- What it explains anew is new. -/
  fresh : ∀ {id plan}, L'.plan id = some plan → L.plan id = some plan ∨ w.rules.size ≤ id

theorem Extends.refl (L : Legend) (w : Workspace) : L.Extends w L where
  toLe := .refl L
  fresh := Or.inl

theorem Extends.trans {L L' L'' : Legend} {w w' : Workspace} (h : L.Extends w L')
    (hsize : w.rules.size ≤ w'.rules.size) (h' : L'.Extends w' L'') : L.Extends w L'' where
  toLe := h.toLe.trans h'.toLe
  fresh hid := by
    rcases h'.fresh hid with hmid | hge
    · exact h.fresh hmid
    · exact Or.inr (hsize.trans hge)

/-- A stretch of a run: more comes to be explained, the workspace agrees with it, and what runs keep
is kept. -/
structure Passes (L : Legend) (w : Workspace) (L' : Legend) (w' : Workspace) : Prop
    extends L.Extends w L' where
  coherent : L'.Coherent w'
  keeps : w.Keeps w'

section

variable {L L' L'' : Legend} {w w' w'' : Workspace}

theorem Passes.refl (hw : L.Coherent w) : L.Passes w L w :=
  ⟨.refl L w, hw, .refl w⟩

/-- Stretches of a run can be put together. -/
theorem Passes.trans (h : L.Passes w L' w') (h' : L'.Passes w' L'' w'') : L.Passes w L'' w'' :=
  ⟨h.toExtends.trans h.keeps.size h'.toExtends, h'.coherent, h.keeps.trans h'.keeps⟩

theorem Coherent.passes_aside (hw : L.Coherent w) (haside : w.Aside w') : L.Passes w L w' :=
  ⟨.refl L w, hw.aside haside, haside.keeps⟩

/-- Entering a rule before a stretch of a run, and leaving it afterwards. -/
theorem Passes.leave {id : RuleId} {p : Position} {r : Rule} (hr : w.rules[id]? = some r)
    (h : L.Passes (w.enter id p) L' w') : L.Passes w L' (w'.leave id (w.marker id)) where
  toLe := h.toLe
  fresh hid := by
    rw [← show (w.enter id p).rules.size = w.rules.size from Array.size_modify]
    exact h.fresh hid
  coherent := h.coherent.mark rfl rfl (Nat.le_refl _)
  keeps := h.keeps.leave hr

end

section

variable {L L' : Legend} {w w₁ w₂ : Workspace} {scope : Scope} {id : RuleId} {plan : Plan}
  {r : Rule} {g : Grammar} {n : Nat}

/-- A new definition changes one rule. -/
theorem rules_define (w : Workspace) (id : RuleId) (d : Definition) (i : RuleId) :
    (w.define id d).rules[i]?
      = if id = i then (w.rules[i]?).map fun r => { r with definition := d } else w.rules[i]? :=
  Array.getElem?_modify

theorem size_underway (haside : (w.define id .underway).Aside w₁) :
    w₁.rules.size = w.rules.size := by
  rw [haside.rules]
  exact Array.size_modify

theorem Below.underway (hL : L.Below w) (haside : (w.define id .underway).Aside w₁) :
    L.Below w₁ where
  plan h := by
    rw [size_underway haside]
    exact hL.plan h
  parser h := by
    rw [haside.caches]
    exact hL.parser h

/-- While the body is built, nobody else touches the rule. -/
theorem rules_underway (hr : w.rules[id]? = some r) (haside : (w.define id .underway).Aside w₁)
    (hgrows : L.Grows w₁ scope n L' w₂) :
    w₂.rules[id]? = some { r with definition := .underway } := by
  have hlt : id < w₁.rules.size := by
    rw [size_underway haside]
    exact lt_of_getElem?_eq_some hr
  rw [hgrows.rules hlt, haside.rules, rules_define, if_pos rfl, hr]
  rfl

/-- Of the rules that were there before, only the one that has been built is another. -/
theorem rules_built (hr : w.rules[id]? = some r) (haside : (w.define id .underway).Aside w₁)
    (hgrows : L.Grows w₁ scope n L' w₂) {i : RuleId} (hi : i < w.rules.size) :
    (w₂.define id (.built g)).rules[i]?
      = if id = i then some { r with definition := .built g } else w.rules[i]? := by
  rw [rules_define]
  split
  next heq =>
    rw [← heq, rules_underway hr haside hgrows]
    rfl
  next hne =>
    rw [← size_underway haside] at hi
    rw [hgrows.rules hi, haside.rules, rules_define, if_neg hne]

/-- When its body has been built, the rule is as planned, and all else is as it was or waits. -/
theorem Coherent.built (hw : L.Coherent w) (hid : L.plan id = some plan)
    (hr : w.rules[id]? = some r) (haside : (w.define id .underway).Aside w₁)
    (hgrows : L.Grows w₁ ((plan.label.name, id) :: plan.scope) n L' w₂)
    (hreads : L'.Reads ((plan.label.name, id) :: plan.scope) g plan.body.plain) :
    L'.Coherent (w₂.define id (.built g)) where
  rule {i q} h := by
    rcases hgrows.plan h with hold | ⟨hge, hnew, _⟩
    · obtain ⟨r', hr', hretired, hstands⟩ := hw.rule hold
      rw [rules_built hr haside hgrows (hw.below.plan hold)]
      split
      next heq =>
        -- the rule itself: it waits no more, and is built as its plan says
        subst heq
        obtain rfl : plan = q := Option.some.inj (hid.symm.trans hold)
        obtain rfl : r = r' := Option.some.inj (hr.symm.trans hr')
        exact ⟨_, rfl, hretired, Or.inr ⟨g, rfl, hreads⟩⟩
      next => exact ⟨r', hr', hretired, hstands.mono hgrows.le⟩
    · -- a new rule, so not the one that was being built
      have hlt : id < i := by
        rw [size_underway haside] at hge
        exact Nat.lt_of_lt_of_le (hw.below.plan hid) hge
      rw [rules_define, if_neg (Nat.ne_of_lt hlt)]
      exact ⟨_, hnew, rfl, Or.inl rfl⟩
  sound h := by
    rcases hgrows.plan h with hold | ⟨_, _, hscope, hclosed⟩
    · exact (hw.sound hold).mono hgrows.le
    · -- the new rules stand in the rule that was being built
      obtain ⟨_, Γ, hΓ⟩ := hw.sound hid
      rw [← hscope] at hclosed
      refine ⟨hclosed, (plan.label.name, plan.body.plain) :: Γ, ?_⟩
      rw [hscope]
      exact .cons (hgrows.le.plan hid) (hΓ.mono hgrows.le)
  cache h := ((hw.below.underway haside).grows hgrows).parser h
  entry hk he := by
    obtain ⟨hold, hentry⟩ := hgrows.cachedAt? (hw.below.underway haside) hk he
    rw [Workspace.cachedAt?, haside.caches] at hentry
    exact (hw.entry hold hentry).mono hgrows.le
  source h := by
    rw [hgrows.text] at h
    show _ < w₂.sources
    rw [hgrows.sources]
    exact Nat.lt_of_lt_of_le (hw.source h) haside.sources

/-- The rules that the body describes were counted while it was waiting, and are there now. -/
theorem keeps_built (hr : w.rules[id]? = some r) (hpending : r.definition = .pending plan)
    (haside : (w.define id .underway).Aside w₁)
    (hgrows : L.Grows w₁ scope plan.body.ruleCount L' w₂) :
    w.Keeps (w₂.define id (.built g)) where
  marker i := by
    rw [Workspace.marker_define, hgrows.marker, Workspace.marker, haside.rules]
    exact w.marker_define id .underway i
  active := hgrows.active.trans haside.active
  budget := by
    have hdefined := w.ruleBudget_define id .underway hr
    have hbuilt := w₂.ruleBudget_define id (.built g) (rules_underway hr haside hgrows)
    have haside₁ : w₁.ruleBudget = (w.define id .underway).ruleBudget := by
      rw [Workspace.ruleBudget, Workspace.ruleBudget, haside.rules]
    have hwaiting : r.budget = 1 + plan.body.ruleCount := by rw [Rule.budget, hpending]
    have hgrown := hgrows.budget
    -- what the waiting body was counted for is what the construction has added
    simp only [Rule.budget] at hdefined hbuilt hwaiting
    omega
  size := by
    show w.rules.size ≤ (w₂.rules.modify id _).size
    rw [Array.size_modify, ← size_underway haside]
    exact hgrows.size
  sources := by
    show w.sources ≤ w₂.sources
    rw [hgrows.sources]
    exact haside.sources

/-- **Building the body of a waiting rule.** The construction succeeds, the rule is built as
planned, and what it kept before it keeps. -/
theorem Coherent.construct (hw : L.Coherent w) (hid : L.plan id = some plan)
    (hr : w.rules[id]? = some r) (hpending : r.definition = .pending plan)
    (hmarker : ∀ p, w.marker id = some p → p.source < w.sources) :
    ∃ L' g w', w.construct id plan = (.ok g, w') ∧ L.Passes w L' w' ∧ w'.alarms = w.alarms
      ∧ L'.Reads ((plan.label.name, id) :: plan.scope) g plan.body.plain := by
  obtain ⟨hclosed, _⟩ := hw.sound hid
  have haside := w.aside_beginning id plan hmarker
  obtain ⟨L', g, w₂, hrun, hgrows, hreads⟩ :=
    @makes_build ((plan.label.name, id) :: plan.scope) plan.body hclosed L _
      (hw.below.underway haside)
  -- the rules that are added stand behind those that there were
  have hfresh : L.Extends w L' := by
    refine ⟨hgrows.le, fun h => ?_⟩
    rcases hgrows.plan h with hold | ⟨hge, _⟩
    · exact Or.inl hold
    · exact Or.inr (size_underway haside ▸ hge)
  refine ⟨L', g, w₂.define id (.built g), by rw [w.construct_eq_build, hrun],
    ⟨hfresh, hw.built hid hr haside hgrows hreads, keeps_built hr hpending haside hgrows⟩, ?_,
    hreads⟩
  show List.filterMap _ w₂.events.toList = _
  rw [hgrows.events]
  exact haside.alarms

/-- The definition of a rule is at hand, or is built now. -/
theorem Coherent.definition (hw : L.Coherent w) (hid : L.plan id = some plan)
    (hmarker : ∀ p, w.marker id = some p → p.source < w.sources) :
    ∃ L' g w', w.definition id = (.ok (some g), w') ∧ L.Passes w L' w' ∧ w'.alarms = w.alarms
      ∧ L'.Reads ((plan.label.name, id) :: plan.scope) g plan.body.plain := by
  obtain ⟨⟨d, entered, retired⟩, hr, _, hstands⟩ := hw.rule hid
  rcases hstands with rfl | ⟨g, rfl, hg⟩
  · obtain ⟨L', g, w', hconstruct, hrest⟩ := hw.construct hid hr rfl hmarker
    refine ⟨L', g, w', ?_, hrest⟩
    rw [Workspace.definition, hr]
    simp only [hconstruct]
  · refine ⟨L, g, w, ?_, .refl hw, rfl, hg⟩
    rw [Workspace.definition, hr]

end

end Legend

end Packrat
